import MiniC.Ir

/-!
# Live intervals

The instructions of a function are numbered from one in the order of the text;
parameters are there from zero on. The interval of a virtual register reaches
from its first appearance to its last.
-/

namespace MiniC.Allocation

open Ir

/-- The instructions between which a register matters, both ends included. -/
structure Interval where
  vreg : VReg
  first : Nat
  last : Nat
deriving DecidableEq

namespace Interval

/-- The order in which registers are handed out: by first appearance, then by
number. -/
def before (a b : Interval) : Bool :=
  a.first < b.first || (a.first == b.first && a.vreg.index ≤ b.vreg.index)

end Interval

/-- Lets the interval of a register reach to `index`; a register without one gets
the interval of `index` alone. -/
def touch (index : Nat) (intervals : List Interval) (vreg : VReg) : List Interval :=
  if intervals.any (·.vreg = vreg) then extend intervals else ⟨vreg, index, index⟩ :: intervals
where
  /-- Moves the end of the interval of `vreg`. -/
  extend : List Interval → List Interval
    | [] => []
    | i :: rest => if i.vreg = vreg then { i with last := index } :: rest else i :: extend rest

/-- The registers an instruction mentions: those it reads, then the one it writes. -/
def mentions (instruction : Instruction) : List VReg :=
  instruction.uses ++ instruction.def?.toList

def scan (index : Nat) (intervals : List Interval) : List Instruction → List Interval
  | [] => intervals
  | i :: rest => scan (index + 1) ((mentions i).foldl (touch index) intervals) rest

/-- The intervals of a function, in the order registers are handed out. -/
def intervals (f : Ir.Function) : List Interval :=
  (scan 1 (f.params.foldl (touch 0) []) f.instructions).mergeSort Interval.before

end MiniC.Allocation
