import MiniC.Proofs.Semantics.Flow
import MiniC.Proofs.Semantics.Simulation

/-!
# What assembly means

A machine on the lines of a text, with a word in every register. Labels and directives are
passed over, a jump goes on at the line that sets its label, and nothing follows a `ret`.

Words, memory and calls have the meaning that they have for trees and for blocks. Loads and
stores of a function are those that the host may refuse; what the machine does with its stack
is not among them. A call keeps the registers that belong to the caller and leaves anything at
all in the others. What was compared is only known until an operation changes the flags.

Code uses the stack below its frame for words of its own. The world that a machine shows is its
world without that part of the memory: `World.Agrees` says that two worlds are the same but for
hidden memory.
-/

namespace MiniC

open List

namespace Word

/-- A word whose low part is replaced: one byte leaves the rest as it is, and four bytes clear
the upper half. -/
def put (w : Width) (old v : Word) : Word :=
  match w with
  | .byte => old.extractLsb' 8 56 ++ v.setWidth 8
  | .dword => (v.setWidth 32).setWidth 64
  | .qword => v

@[simp] theorem put_qword (old v : Word) : put .qword old v = v := rfl

end Word

/-- Worlds with the same calls and the same memory, except where it is hidden. -/
structure World.Agrees (hidden : Word → Prop) (w w' : World) : Prop where
  calls : w.calls = w'.calls
  memory : ∀ a, ¬ hidden a → w.memory a = w'.memory a

namespace Asm

/-- The registers, what was compared last if it is known, and the world. -/
structure State where
  regs : Reg → Word
  flags : Option (Int × Int)
  world : World

namespace State

def set (s : State) (r : Reg) (v : Word) : State := { s with regs := Function.update s.regs r v }

def setPart (s : State) (w : Width) (r : Reg) (v : Word) : State := s.set r (.put w (s.regs r) v)

def forget (s : State) : State := { s with flags := none }

def withMemory (s : State) (m : Memory) : State := { s with world := { s.world with memory := m } }

def push (s : State) (v : Word) : State :=
  let rsp := s.regs .rsp - 8
  (s.set .rsp rsp).withMemory (s.world.memory.store .qword rsp v)

def pop (s : State) (r : Reg) : State :=
  (s.set .rsp (s.regs .rsp + 8)).set r (s.world.memory.load .qword (s.regs .rsp))

@[simp] theorem setPart_regs (s : State) (w : Width) (r : Reg) (v : Word) :
    (s.setPart w r v).regs = Function.update s.regs r (.put w (s.regs r) v) := rfl
@[simp] theorem setPart_world (s : State) (w : Width) (r : Reg) (v : Word) :
    (s.setPart w r v).world = s.world := rfl

end State

/-! ## Instructions -/

def AluOp.apply : AluOp → Word → Word → Word
  | .add, a, b => a + b
  | .sub, a, b => a - b
  | .mul, a, b => a * b
  | .and, a, b => a &&& b
  | .or, a, b => a ||| b
  | .xor, a, b => a ^^^ b

def ShiftOp.apply : ShiftOp → Width → Word → Nat → Word
  | .left, _, a, n => a <<< n
  | .right, w, a, n => (a.cut w).sshiftRight n

def Cond.holds : Cond → Int → Int → Bool
  | .eq, a, b => a = b
  | .ne, a, b => a ≠ b
  | .lt, a, b => a < b
  | .le, a, b => a ≤ b

def Reg.isPreserved : Reg → Bool
  | .rbx | .rsp | .rbp | .r12 | .r13 | .r14 | .r15 => true
  | _ => false

section

variable (host : Host) (scratch : State → Reg → Word)

def address (s : State) : Address → Word
  | .frame offset => s.regs .rbp - .ofNat 64 offset.toNat
  | .symbol name => host.symbol name
  | .reg r => s.regs r

def operand (s : State) : Operand → Word
  | .reg r => s.regs r
  | .imm value => value.toBitVec

def idiv (w : Width) (src : Reg) (s : State) : Except Stop State :=
  let dividend := Word.low w (s.regs .rdx) * 2 ^ w.bits + ((s.regs .rax).toNat % 2 ^ w.bits : Nat)
  let divisor := Word.low w (s.regs src)
  if divisor = 0 ∨ !Word.fits w (dividend.tdiv divisor) then .error .division
  else .ok ((s.setPart w .rax (.ofInt 64 (dividend.tdiv divisor))).setPart w .rdx
    (.ofInt 64 (dividend.tmod divisor))).forget

def invoke (name : String) (passed : Nat) (s : State) : State :=
  let args := (Reg.arguments.take passed).map s.regs
  let answer := host.answer name args s.world.memory
  { regs := fun r => if r = .rax then answer.1 else if r.isPreserved then s.regs r else scratch s r
    flags := none
    world := ⟨answer.2, s.world.calls ++ [⟨name, args⟩]⟩ }

def operate (s : State) : Instruction → Except Stop State
  | .push r => .ok (s.push (s.regs r))
  | .pop r => .ok (s.pop r)
  | .mov w dst src => .ok (s.setPart w dst (operand s src))
  | .load w dst src =>
    let a := address host s src
    if host.allows a w then .ok (s.set dst (s.world.memory.load w a)) else .error .access
  | .store w dst src =>
    let a := address host s dst
    if host.allows a w then .ok (s.withMemory (s.world.memory.store w a (s.regs src)))
    else .error .access
  | .extend w dst src => .ok (s.set dst ((s.regs src).cut w))
  | .zeroExtend dst src => .ok (s.set dst (((s.regs src).setWidth 8).setWidth 64))
  | .lea dst src => .ok (s.set dst (address host s src))
  | .alu op w dst src => .ok (s.setPart w dst (op.apply (s.regs dst) (operand s src))).forget
  | .widen w => .ok (s.setPart w .rdx (if Word.low w (s.regs .rax) < 0 then -1 else 0))
  | .idiv w src => idiv w src s
  | .shift op w dst =>
    .ok (s.setPart w dst (op.apply w (s.regs dst) (Word.shiftCount w (s.regs .rcx)))).forget
  | .neg w dst => .ok (s.setPart w dst (-s.regs dst)).forget
  | .not w dst => .ok (s.setPart w dst (~~~s.regs dst))
  | .cmp w lhs rhs =>
    .ok { s with flags := some (Word.low w (s.regs lhs), Word.low w (operand s rhs)) }
  | .set cond dst =>
    match s.flags with
    | some (a, b) => .ok (s.setPart .byte dst (.ofBool (cond.holds a b)))
    | none => .error .untyped
  | .jcc .. => if s.flags.isSome then .ok s else .error .untyped
  | .call name passed => .ok (invoke host scratch name passed s)
  | .leave => .ok ((s.set .rsp (s.regs .rbp)).pop .rbp)
  | .jmp _ | .ret => .ok s

/-! ## The machine -/

def target (text : List Line) (s : State) (pc : Nat) : Instruction → Option Nat
  | .jmp label => position text label
  | .jcc cond label =>
    if s.flags.any fun (a, b) => cond.holds a b then position text label else some (pc + 1)
  | .ret => none
  | _ => some (pc + 1)

/-- The next line, and the state. -/
structure Config where
  pc : Nat
  state : State

def step (text : List Line) (c : Config) : Option Config := do
  match ← text[c.pc]? with
  | .code i =>
    match operate host scratch c.state i with
    | .ok s => return ⟨← target text s c.pc i, s⟩
    | .error _ => none
  | _ => return ⟨c.pc + 1, c.state⟩

def Stops (text : List Line) (c : Config) (stop : Stop) : Prop :=
  ∃ i, text[c.pc]? = some (.code i) ∧ operate host scratch c.state i = .error stop

/-- The machine of a text. A part of the memory is hidden from the world that it shows. -/
def machine (hidden : Word → Prop) (text : List Line) : Machine Config where
  step := step host scratch text
  stops := Stops host scratch text
  shows c w := c.state.world.Agrees hidden w

end

def Sits (text : List Line) (k : Nat) (code : List Line) : Prop := code <+: text.drop k

/-- A state changed only in some registers, and in what was compared. -/
structure Keeps (changed : List Reg) (s s' : State) : Prop where
  regs : ∀ r, r ∉ changed → s'.regs r = s.regs r
  world : s'.world = s.world

section

variable {host : Host} {scratch : State → Reg → Word} {hidden : Word → Prop} {text : List Line}
  {k j : Nat} {s s' : State}

@[simp] theorem sits_nil : Sits text k [] := nil_prefix

@[simp] theorem sits_append {first rest : List Line} :
    Sits text k (first ++ rest) ↔ Sits text k first ∧ Sits text (k + first.length) rest := by
  unfold Sits
  constructor
  · intro h
    refine ⟨(prefix_append first rest).trans h, ?_⟩
    obtain ⟨more, h⟩ := h
    rw [← drop_drop, ← h, append_assoc, drop_left]
    exact prefix_append rest more
  · rintro ⟨⟨more, h⟩, second⟩
    rw [← drop_drop, ← h, drop_left] at second
    rw [← h]
    exact (prefix_append_right_inj first).mpr second

variable {line : Line} {code : List Line} {label : Label}

@[simp] theorem sits_cons :
    Sits text k (line :: code) ↔ text[k]? = some line ∧ Sits text (k + 1) code := by
  have single : Sits text k [line] ↔ text[k]? = some line := by
    unfold Sits
    rw [← List.head?_drop]
    cases text.drop k with
    | nil => simp
    | cons first rest => simp [cons_prefix_cons, eq_comm]
  rw [← single, ← singleton_append, sits_append, length_singleton]

theorem Sits.getElem? (h : Sits text k code) (mem : line ∈ code) :
    ∃ j : Nat, text[j]? = some line := by
  obtain ⟨i, lt, rfl⟩ := getElem_of_mem mem
  obtain ⟨more, same⟩ := h
  refine ⟨k + i, ?_⟩
  rw [← List.getElem?_drop, ← same, List.getElem?_append_left lt, List.getElem?_eq_getElem lt]

namespace Keeps

variable {changed : List Reg} {t : State}

theorem refl (s : State) : Keeps changed s s := ⟨fun _ _ => rfl, rfl⟩

theorem trans (first : Keeps changed s s') (rest : Keeps changed s' t) : Keeps changed s t :=
  ⟨fun r other => (rest.regs r other).trans (first.regs r other), rest.world.trans first.world⟩

end Keeps

/-! ## Steps -/

theorem step_code {i : Instruction} (here : text[k]? = some (.code i))
    (done : operate host scratch s i = .ok s') (next : target text s' k i = some j) :
    (machine host scratch hidden text).step ⟨k, s⟩ = some ⟨j, s'⟩ := by
  simp [machine, step, here, done, next]

theorem step_label (here : text[k]? = some (.label label)) :
    (machine host scratch hidden text).step ⟨k, s⟩ = some ⟨k + 1, s⟩ := by
  simp [machine, step, here]

theorem step_jmp (here : text[k]? = some (.code (.jmp label)))
    (found : position text label = some j) :
    (machine host scratch hidden text).step ⟨k, s⟩ = some ⟨j, s⟩ :=
  step_code here rfl found

theorem steps_compare {r : Reg} {src : Operand} {cond : Cond}
    (sits : Sits text k [.code (.cmp .qword r src), .code (.jcc cond label)])
    (found : position text label = some j) :
    ∃ s', Keeps [] s s' ∧ (machine host scratch hidden text).Steps 2 ⟨k, s⟩
      ⟨if cond.holds (s.regs r).toInt (operand s src).toInt then j else k + 2, s'⟩ := by
  simp only [sits_cons] at sits
  refine ⟨{ s with flags := some ((s.regs r).toInt, (operand s src).toInt) },
    ⟨fun _ _ => rfl, rfl⟩, ?_⟩
  refine .next (step_code sits.1 (by simp [operate]; rfl) rfl) (.one ?_)
  refine step_code sits.2.1 rfl ?_
  simp only [target, Option.any_some, found]
  split <;> rfl

end

end Asm

end MiniC
