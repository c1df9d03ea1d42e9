import MiniC.Allocation.Interval
import MiniC.Emit.Error

/-!
# Linear scan

Registers of a bank are handed out to intervals in order. A slot of the bank is
free for an interval if the last interval in it ended before; a pinned register
takes the slot of its pin, any other the first free slot. Nothing is moved to
memory: if no slot is free, there is no allocation.
-/

namespace MiniC

/-- The slots of a bank that virtual registers were given, and the slots that
were given at all, in order. -/
structure Allocation where
  slots : List (Ir.VReg × Nat)
  used : List Nat

namespace Allocation

open Ir

def slot? (allocation : Allocation) (vreg : VReg) : Option Nat :=
  (allocation.slots.find? (·.1 = vreg)).map (·.2)

/-- Whether a slot is free from `start` on, given the end of what it holds. -/
def isFree (start : Nat) (end? : Option Nat) : Bool := end?.all (· < start)

def choose (pin? : VReg → Option Nat) (ends : List (Option Nat)) (interval : Interval) :
    Except EmitError Nat :=
  match pin? interval.vreg with
  | some pin =>
    if (ends[pin]?).any (isFree interval.first) then .ok pin
    else .error (.pinTaken interval.vreg pin)
  | none =>
    match ends.findIdx? (isFree interval.first) with
    | some slot => .ok slot
    | none => .error (.exhausted ends.length)

def linearScan (pin? : VReg → Option Nat) (ends : List (Option Nat)) :
    List Interval → Except EmitError (List (VReg × Nat))
  | [] => .ok []
  | interval :: rest => do
    let slot ← choose pin? ends interval
    let rest ← linearScan pin? (ends.set slot (some interval.last)) rest
    return (interval.vreg, slot) :: rest

/-- Allocates the virtual registers of a function to a bank of `size` registers. -/
def allocate (size : Nat) (f : Ir.Function) : Except EmitError Allocation := do
  let slots ← linearScan f.pin? (List.replicate size none) (intervals f)
  return ⟨slots, (List.range size).filter fun slot => slots.any (·.2 = slot)⟩

end Allocation

end MiniC
