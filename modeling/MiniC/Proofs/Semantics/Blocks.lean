import MiniC.Ir
import MiniC.Proofs.Semantics.Simulation

/-!
# What blocks mean

A machine on the instructions of a function in the order of the text, with a word in
every virtual register. An instruction that does not end its block is followed by the
next one; a jump goes on at the first instruction of its block. A function starts at its
first instruction, with its arguments in the registers of its parameters, and has
returned when it reaches a `ret`.

What an instruction computes, it computes on the same world as the tree does: there is
one meaning of words, of memory and of calls.
-/

namespace MiniC.Ir

def placesFrom : Nat → List Block → List (BlockId × Nat)
  | _, [] => []
  | k, b :: rest => (b.id, k) :: placesFrom (k + b.instructions.length) rest

namespace Function

def entry (f : Function) (id : BlockId) : Option Nat := (placesFrom 0 f.blocks).lookup id

end Function

/-- The place of the next instruction, the values of the virtual registers, and the world. -/
structure Config where
  pc : Nat
  regs : VReg → Word
  world : World

def update (regs : VReg → Word) (dst : Option VReg) (value : Word) : VReg → Word :=
  fun v => if dst = some v then value else regs v

section

variable (host : Host) (base : Word)

/-- What an instruction computes. The result matters for those that write a register. -/
def operation (regs : VReg → Word) : Instruction → Eval Word
  | .imm _ value => return value.toBitVec
  | .label _ symbol => return host.symbol symbol
  | .localAddr _ offset => return base - .ofNat 64 offset.toNat
  | .mov _ src => return regs src
  | .binary op width _ lhs rhs => Word.combine op width (regs lhs) (regs rhs)
  | .unary op width _ src => return .unary op width (regs src)
  | .cast width _ src => return (regs src).cut width
  | .load width _ addr => host.read width (regs addr)
  | .store width addr src => do
    host.write width (regs addr) (regs src)
    return regs src
  | .call width _ name args => return (← host.invoke name (args.map regs)).cut width
  | .branch .. | .jump _ | .ret _ => return 0

def target (f : Function) (regs : VReg → Word) (pc : Nat) : Instruction → Option Nat
  | .branch test yes no => f.entry (if regs test ≠ 0 then yes else no)
  | .jump block => f.entry block
  | .ret _ => none
  | _ => some (pc + 1)

def step (f : Function) (c : Config) : Option Config := do
  let i ← f.instructions[c.pc]?
  match operation host base c.regs i c.world with
  | .ok value world => return ⟨← target f c.regs c.pc i, update c.regs i.def? value, world⟩
  | .error _ _ => none

def Stops (f : Function) (c : Config) (stop : Stop) : Prop :=
  ∃ i, f.instructions[c.pc]? = some i ∧ ∃ w, operation host base c.regs i c.world = .error stop w

def machine (f : Function) : Machine Config where
  step := step host base f
  stops := Stops host base f
  shows c w := c.world = w

end

def Returns (f : Function) (value : Option Word) (c : Config) : Prop :=
  ∃ src, f.instructions[c.pc]? = some (.ret src) ∧ src.map c.regs = value

variable {host : Host} {base : Word} {f : Function}

@[simp] theorem update_none (regs : VReg → Word) (value : Word) : update regs none value = regs := by
  funext v
  rfl

@[simp] theorem update_self (regs : VReg → Word) (v : VReg) (value : Word) :
    update regs (some v) value v = value := if_pos rfl

theorem update_of_ne {regs : VReg → Word} {u v : VReg} (value : Word) (h : u ≠ v) :
    update regs (some v) value u = regs u := if_neg fun same => h (Option.some.inj same).symm

theorem step_eq_some {c : Config} {i : Instruction} {v : Word} {w : World} {k : Nat}
    (fetch : f.instructions[c.pc]? = some i) (computed : operation host base c.regs i c.world = .ok v w)
    (next : target f c.regs c.pc i = some k) :
    (machine host base f).step c = some ⟨k, update c.regs i.def? v, w⟩ := by
  simp [machine, step, fetch, computed, next]

theorem Returns.halted {c : Config} {value : Option Word} (h : Returns f value c) :
    (machine host base f).step c = none := by
  obtain ⟨src, found, -⟩ := h
  simp [machine, step, found, operation, target, pure, EStateM.pure]

theorem Stops.halted {c : Config} {stop : Stop} (h : Stops host base f c stop) :
    (machine host base f).step c = none := by
  obtain ⟨i, found, w, stopped⟩ := h
  simp [machine, step, found, stopped]

end MiniC.Ir
